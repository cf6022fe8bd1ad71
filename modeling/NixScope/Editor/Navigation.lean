import NixScope.Editor.Cursor
import NixScope.Editor.Document
import NixScope.Names.Symbol
import NixScope.Workspace.FileId

namespace NixScope

open Syntax

structure Target where
  file : FileId
  range : Range
  start : Position
  stop : Position
  name : String
  kind : DeclarationKind
  deriving DecidableEq, Repr

namespace Target

def of? (file : FileId) (d : Document) (declaration : Declaration) : Option Target :=
  (declaration.name.find? d.root).map fun n =>
    let span := d.lines.span n.range
    ⟨file, n.range, span.1, span.2, n.text, declaration.kind⟩

def presentation (t : Target) : Presentation := ⟨t.name, none⟩

end Target

structure Reference where
  file : FileId
  range : Range
  start : Position
  stop : Position
  isDeclaration : Bool
  deriving DecidableEq, Repr

namespace Reference

def of (file : FileId) (d : Document) (isDeclaration : Bool) (range : Range) : Reference :=
  let span := d.lines.span range
  ⟨file, range, span.1, span.2, isDeclaration⟩

end Reference

namespace Document

def definitions (d : Document) (file : FileId) (offset : Nat) : List Target :=
  match Cursor.usage? d.root offset with
  | none => []
  | some (u, i) =>
    ((((Resolution.of d.root u).symbols i).flatMap (·.declarations d.root)).filterMap
      (Target.of? file d))

/-- The symbols at an offset: the candidates of a usage, else what is declared there. -/
def symbolsAt (d : Document) (offset : Nat) : List Symbol :=
  match Cursor.usage? d.root offset with
  | some (u, i) => (Resolution.of d.root u).symbols i
  | none => (Cursor.declared? d.root offset).toList

def dropRepeats {α : Type} [DecidableEq α] : List α → List α
  | a :: b :: rest => if a = b then dropRepeats (b :: rest) else a :: dropRepeats (b :: rest)
  | as => as

/-- Ranges of the names that declare one of the symbols, in the order of the text. -/
def declarationRanges (d : Document) (symbols : List Symbol) : List Range :=
  dropRepeats (((symbols.flatMap (·.declarations d.root)).map (·.name.range)).mergeSort
    fun r s => r.start ≤ s.start)

/-- Ranges of the segments of a usage that have one of the symbols among their candidates. -/
def usageRanges (d : Document) (symbols : List Symbol) (u : Usage) : List Range :=
  let r := Resolution.of d.root u
  (u.segments.zipIdx.filter fun s => (r.symbols s.2).any symbols.contains).map (·.1.node.range)

/-- All occurrences of the symbol at an offset, declarations first. -/
def references (d : Document) (file : FileId) (offset : Nat) : List Reference :=
  match d.symbolsAt offset with
  | [] => []
  | symbols =>
    (d.declarationRanges symbols).map (.of file d true)
      ++ ((Usage.under d.root).flatMap (d.usageRanges symbols)).map (.of file d false)

end Document

end NixScope
