import MettaSyntax.Grammar.Language
import MettaSyntax.Grammar.Description
import MettaSyntax.Highlight.SemanticToken
import MettaSyntax.Index.Suggestion
import MettaSyntax.Outline.Diagnostic
import MettaSyntax.Outline.NameAt
import MettaSyntax.Tree.Printer
import MettaSyntax.Workspace.Edit
import MettaSyntax.Workspace.Scan
import MettaSyntax.Proofs.Lossless
import MettaSyntax.Proofs.Nesting
import MettaSyntax.Proofs.Acceptance
import MettaSyntax.Proofs.Forest
import MettaSyntax.Proofs.Layout
import MettaSyntax.Proofs.ByteOrder
import MettaSyntax.Proofs.Documents
import MettaSyntax.Proofs.Shape
import MettaSyntax.Proofs.Placement
import MettaSyntax.Proofs.Encoding
import MettaSyntax.Proofs.Matches
import MettaSyntax.Proofs.Coverage
import MettaSyntax.Proofs.LineBreak
import MettaSyntax.Proofs.Continuation
import MettaSyntax.Proofs.Locating
import MettaSyntax.Proofs.Defining
import MettaSyntax.Proofs.Stability
import MettaSyntax.Proofs.Resolution
import MettaSyntax.Proofs.Walking
import MettaSyntax.Proofs.Scanning
import MettaSyntax.Proofs.Rescanning
import MettaSyntax.Proofs.Identifiers
import MettaSyntax.Proofs.Visiting
import MettaSyntax.Proofs.Spelling
import MettaSyntax.Proofs.Pointing
import MettaSyntax.Proofs.Machine
import MettaSyntax.Proofs.Elements
import MettaSyntax.Proofs.Extraction
import MettaSyntax.Proofs.Genuine
import MettaSyntax.Proofs.Parents
import MettaSyntax.Proofs.Mended
import MettaSyntax.Proofs.Supplying
import MettaSyntax.Proofs.TokenTypes
import MettaSyntax.Proofs.Repairs
import MettaSyntax.Proofs.Skipping
import MettaSyntax.Proofs.Cutting
import MettaSyntax.Proofs.Unclosed
import MettaSyntax.Proofs.Moving
import MettaSyntax.Proofs.Joining
import MettaSyntax.Proofs.StrayClosing
import MettaSyntax.Proofs.Describing
import MettaSyntax.Proofs.Numerals
import MettaSyntax.Proofs.Strings
import MettaSyntax.Proofs.Lexemes
import MettaSyntax.Proofs.Slicing
import MettaSyntax.Proofs.Distances
import MettaSyntax.Proofs.Points
import MettaSyntax.Proofs.Suggesting
import MettaSyntax.Proofs.Versions
import MettaSyntax.Proofs.Addresses
import MettaSyntax.Proofs.Labels
