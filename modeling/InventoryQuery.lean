import InventoryQuery.Catalog.Document
import InventoryQuery.Catalog.Facts
import InventoryQuery.Catalog.Index
import InventoryQuery.Catalog.Lookup
import InventoryQuery.Catalog.OrderedMap
import InventoryQuery.Catalog.Version
import InventoryQuery.Cursor.Completion
import InventoryQuery.Cursor.Prediction
import InventoryQuery.Cursor.Splice
import InventoryQuery.Diagnostic.Code
import InventoryQuery.Diagnostic.Context
import InventoryQuery.Diagnostic.SyntaxError
import InventoryQuery.Grammar.Compile
import InventoryQuery.Grammar.Rules
import InventoryQuery.Grammar.State
import InventoryQuery.Json.Fault
import InventoryQuery.Json.Number
import InventoryQuery.Json.Structure
import InventoryQuery.Json.Text
import InventoryQuery.Keyword.Phrase
import InventoryQuery.Keyword.Rewriting
import InventoryQuery.Proofs.Catalog.Ancestry
import InventoryQuery.Proofs.Catalog.Build
import InventoryQuery.Proofs.Catalog.Creation
import InventoryQuery.Proofs.Catalog.Filing
import InventoryQuery.Proofs.Catalog.Heading
import InventoryQuery.Proofs.Catalog.Listing
import InventoryQuery.Proofs.Catalog.Numeric
import InventoryQuery.Proofs.Catalog.Platforms
import InventoryQuery.Proofs.Catalog.RoundTrip
import InventoryQuery.Proofs.Catalog.Singular
import InventoryQuery.Proofs.Catalog.Version
import InventoryQuery.Proofs.Cursor.Enclosing
import InventoryQuery.Proofs.Cursor.Label
import InventoryQuery.Proofs.Cursor.Offering
import InventoryQuery.Proofs.Cursor.Search
import InventoryQuery.Proofs.Cursor.Source
import InventoryQuery.Proofs.Cursor.Word
import InventoryQuery.Proofs.Grammar.Acceptance
import InventoryQuery.Proofs.Grammar.Building
import InventoryQuery.Proofs.Grammar.Completeness
import InventoryQuery.Proofs.Grammar.Course
import InventoryQuery.Proofs.Grammar.Derivation
import InventoryQuery.Proofs.Grammar.Extent
import InventoryQuery.Proofs.Grammar.Literals
import InventoryQuery.Proofs.Grammar.Locality
import InventoryQuery.Proofs.Grammar.Mirror
import InventoryQuery.Proofs.Grammar.Nesting
import InventoryQuery.Proofs.Grammar.Relabelling
import InventoryQuery.Proofs.Grammar.Soundness
import InventoryQuery.Proofs.Grammar.Unclosed
import InventoryQuery.Proofs.Grammar.Upkeep
import InventoryQuery.Proofs.Grammar.Viability
import InventoryQuery.Proofs.Json.Reading
import InventoryQuery.Proofs.Json.Structure
import InventoryQuery.Proofs.Json.Text
import InventoryQuery.Proofs.Keyword.Agreement
import InventoryQuery.Proofs.Keyword.Joining
import InventoryQuery.Proofs.Keyword.Marks
import InventoryQuery.Proofs.Keyword.Untouched
import InventoryQuery.Proofs.Layout.Irrelevance
import InventoryQuery.Proofs.Layout.Parsing
import InventoryQuery.Proofs.Layout.Respaced
import InventoryQuery.Proofs.Layout.Rewriting
import InventoryQuery.Proofs.Layout.Tokens
import InventoryQuery.Proofs.Rendering.Bracketed
import InventoryQuery.Proofs.Rendering.Rereading
import InventoryQuery.Proofs.Rendering.Stable
import InventoryQuery.Proofs.Repetition
import InventoryQuery.Proofs.Text.Cutting
import InventoryQuery.Proofs.Text.Segments
import InventoryQuery.Proofs.Text.Separator
import InventoryQuery.Proofs.Token.Content
import InventoryQuery.Proofs.Token.Joining
import InventoryQuery.Proofs.Token.Lossless
import InventoryQuery.Proofs.Token.Ordered
import InventoryQuery.Proofs.Tree.Fold
import InventoryQuery.Proofs.Tree.Forest
import InventoryQuery.Proofs.Tree.Order
import InventoryQuery.Proofs.Tree.Parents
import InventoryQuery.Proofs.Tree.Preorder
import InventoryQuery.Proofs.Tree.Scope
import InventoryQuery.Proofs.Tree.WellFormed
import InventoryQuery.Proofs.Typing.Growth
import InventoryQuery.Proofs.Typing.Implicit
import InventoryQuery.Proofs.Typing.Items
import InventoryQuery.Proofs.Typing.Leaves
import InventoryQuery.Proofs.Typing.LetterCase
import InventoryQuery.Proofs.Typing.Termination
import InventoryQuery.Proofs.Typing.Transparency
import InventoryQuery.Proofs.Typing.Unbound
import InventoryQuery.Repetition
import InventoryQuery.Text.Blank
import InventoryQuery.Text.DefaultIgnorable
import InventoryQuery.Text.GraphemeExtend
import InventoryQuery.Text.Quoted
import InventoryQuery.Text.Search
import InventoryQuery.Text.Span
import InventoryQuery.Text.Unprintable
import InventoryQuery.Token.Kind
import InventoryQuery.Token.Lexeme
import InventoryQuery.Token.Stream
import InventoryQuery.Tree.Expr
import InventoryQuery.Tree.Operator
import InventoryQuery.Tree.Rendering
import InventoryQuery.Tree.Scope
import InventoryQuery.Tree.Shape
import InventoryQuery.Tree.Table
import InventoryQuery.Typing.Resolve
import InventoryQuery.Typing.Ty
import InventoryQuery.Workspace
