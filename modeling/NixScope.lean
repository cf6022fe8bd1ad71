import NixScope.Check.Checker
import NixScope.Check.Diagnostic
import NixScope.Editor.Cursor
import NixScope.Editor.Document
import NixScope.Editor.Highlight
import NixScope.Editor.Navigation
import NixScope.Names.Attribute
import NixScope.Names.Builtin
import NixScope.Names.Declaration
import NixScope.Names.Scope
import NixScope.Names.Symbol
import NixScope.Names.Usage
import NixScope.Proofs.Alone
import NixScope.Proofs.Binders
import NixScope.Proofs.BindingOrder
import NixScope.Proofs.BoundNames
import NixScope.Proofs.Candidates
import NixScope.Proofs.Chains
import NixScope.Proofs.Clean
import NixScope.Proofs.Complete
import NixScope.Proofs.Cursor
import NixScope.Proofs.DeclarationSites
import NixScope.Proofs.DepthLimit
import NixScope.Proofs.Descent
import NixScope.Proofs.Duplicates
import NixScope.Proofs.Edges
import NixScope.Proofs.Elements
import NixScope.Proofs.ErrorPlaces
import NixScope.Proofs.FileNumbers
import NixScope.Proofs.FileSets
import NixScope.Proofs.Forms
import NixScope.Proofs.Handles
import NixScope.Proofs.Highlights
import NixScope.Proofs.Histories
import NixScope.Proofs.IndentedText
import NixScope.Proofs.Layout
import NixScope.Proofs.Levels
import NixScope.Proofs.Lexemes
import NixScope.Proofs.Lexer
import NixScope.Proofs.LineTable
import NixScope.Proofs.Lines
import NixScope.Proofs.Locality
import NixScope.Proofs.Loops
import NixScope.Proofs.Lossless
import NixScope.Proofs.Modes
import NixScope.Proofs.NestedUsages
import NixScope.Proofs.Nesting
import NixScope.Proofs.Origins
import NixScope.Proofs.Partition
import NixScope.Proofs.Parts
import NixScope.Proofs.PathModes
import NixScope.Proofs.PathText
import NixScope.Proofs.PhraseScopes
import NixScope.Proofs.Phrases
import NixScope.Proofs.Place
import NixScope.Proofs.Placement
import NixScope.Proofs.Pointers
import NixScope.Proofs.Positions
import NixScope.Proofs.Precedence
import NixScope.Proofs.Productions
import NixScope.Proofs.Reads
import NixScope.Proofs.Rebuilds
import NixScope.Proofs.References
import NixScope.Proofs.Runs
import NixScope.Proofs.Scoping
import NixScope.Proofs.Segments
import NixScope.Proofs.Spelling
import NixScope.Proofs.Subexpressions
import NixScope.Proofs.Tables
import NixScope.Proofs.TermScopes
import NixScope.Proofs.Terms
import NixScope.Proofs.Tight
import NixScope.Proofs.Tree
import NixScope.Proofs.Trivia
import NixScope.Rose
import NixScope.Syntax.Error
import NixScope.Syntax.Grammar
import NixScope.Syntax.Grammar.Rule
import NixScope.Syntax.Kind
import NixScope.Syntax.Node
import NixScope.Syntax.Node.Parts
import NixScope.Syntax.Parse
import NixScope.Syntax.Pointer
import NixScope.Syntax.Quoted
import NixScope.Syntax.Token
import NixScope.Syntax.Token.Lexer
import NixScope.Syntax.Token.Scan
import NixScope.Syntax.Tree
import NixScope.Text.Lines
import NixScope.Text.Range
import NixScope.Workspace
import NixScope.Workspace.FileId
import NixScope.Workspace.FileSet
import NixScope.Workspace.Path
import NixScope.Workspace.Table
