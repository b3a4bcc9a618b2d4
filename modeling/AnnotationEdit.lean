import AnnotationEdit.Batch.Bubble
import AnnotationEdit.Batch.Fold
import AnnotationEdit.Batch.Reduce
import AnnotationEdit.Batch.Shadow
import AnnotationEdit.Config.Basic
import AnnotationEdit.Config.Load
import AnnotationEdit.Config.Vocabulary
import AnnotationEdit.Data.Basic
import AnnotationEdit.Data.Json
import AnnotationEdit.Data.Moment
import AnnotationEdit.Data.Toml
import AnnotationEdit.Deletion.Edits
import AnnotationEdit.Deletion.Expand
import AnnotationEdit.Deletion.Merge
import AnnotationEdit.Deletion.Range
import AnnotationEdit.Document
import AnnotationEdit.Error
import AnnotationEdit.Exchange.Document
import AnnotationEdit.Exchange.Operation
import AnnotationEdit.Exchange.Syntax
import AnnotationEdit.Exchange.Text
import AnnotationEdit.Exchange.Token
import AnnotationEdit.Exchange.Tree
import AnnotationEdit.Locate
import AnnotationEdit.Operation
import AnnotationEdit.Pointer
import AnnotationEdit.Printer
import AnnotationEdit.Proofs.Batch.ContainerOrder
import AnnotationEdit.Proofs.Batch.Containers
import AnnotationEdit.Proofs.Batch.Emptying
import AnnotationEdit.Proofs.Batch.Filling
import AnnotationEdit.Proofs.Batch.Fitting
import AnnotationEdit.Proofs.Batch.Folding
import AnnotationEdit.Proofs.Batch.Insertions
import AnnotationEdit.Proofs.Batch.Members
import AnnotationEdit.Proofs.Batch.OrderIndependence
import AnnotationEdit.Proofs.Batch.Preparation
import AnnotationEdit.Proofs.Batch.Refilling
import AnnotationEdit.Proofs.Batch.Reorder
import AnnotationEdit.Proofs.Batch.Replacements
import AnnotationEdit.Proofs.Batch.Shadowing
import AnnotationEdit.Proofs.Deletion.Closings
import AnnotationEdit.Proofs.Deletion.FixedPoints
import AnnotationEdit.Proofs.Deletion.Reach
import AnnotationEdit.Proofs.Deletion.Rereading
import AnnotationEdit.Proofs.Deletion.Runs
import AnnotationEdit.Proofs.Deletion.Separators
import AnnotationEdit.Proofs.Deletion.Settling
import AnnotationEdit.Proofs.Deletion.Wrapping
import AnnotationEdit.Proofs.Document
import AnnotationEdit.Proofs.Locate.Children
import AnnotationEdit.Proofs.Locate.Completeness
import AnnotationEdit.Proofs.Locate.Covering
import AnnotationEdit.Proofs.Locate.Descent
import AnnotationEdit.Proofs.Locate.Detours
import AnnotationEdit.Proofs.Locate.Exactness
import AnnotationEdit.Proofs.Locate.Soundness
import AnnotationEdit.Proofs.PointerOrder
import AnnotationEdit.Proofs.PointerText
import AnnotationEdit.Proofs.Printing.Elements
import AnnotationEdit.Proofs.Printing.Printable
import AnnotationEdit.Proofs.Printing.References
import AnnotationEdit.Proofs.Printing.RoundTrip
import AnnotationEdit.Proofs.Printing.Spelling
import AnnotationEdit.Proofs.Routes
import AnnotationEdit.Proofs.Service.Grouping
import AnnotationEdit.Proofs.Service.Paths
import AnnotationEdit.Proofs.Service.References
import AnnotationEdit.Proofs.Service.Synchronization
import AnnotationEdit.Proofs.Sorting
import AnnotationEdit.Proofs.Syntax.Abstraction
import AnnotationEdit.Proofs.Syntax.Appending
import AnnotationEdit.Proofs.Syntax.Assignments
import AnnotationEdit.Proofs.Syntax.Brackets
import AnnotationEdit.Proofs.Syntax.Commas
import AnnotationEdit.Proofs.Syntax.Content
import AnnotationEdit.Proofs.Syntax.Filling
import AnnotationEdit.Proofs.Syntax.Grafted
import AnnotationEdit.Proofs.Syntax.Grafting
import AnnotationEdit.Proofs.Syntax.Grammar
import AnnotationEdit.Proofs.Syntax.Growing
import AnnotationEdit.Proofs.Syntax.Layout
import AnnotationEdit.Proofs.Syntax.Meaning
import AnnotationEdit.Proofs.Syntax.Nodes
import AnnotationEdit.Proofs.Syntax.Parentheses
import AnnotationEdit.Proofs.Syntax.Parsing
import AnnotationEdit.Proofs.Syntax.Parts
import AnnotationEdit.Proofs.Syntax.Plots
import AnnotationEdit.Proofs.Syntax.Pruning
import AnnotationEdit.Proofs.Syntax.Ranges
import AnnotationEdit.Proofs.Syntax.Refilling
import AnnotationEdit.Proofs.Syntax.Remainder
import AnnotationEdit.Proofs.Syntax.Renewal
import AnnotationEdit.Proofs.Syntax.Replacing
import AnnotationEdit.Proofs.Syntax.Respelling
import AnnotationEdit.Proofs.Syntax.Rewriting
import AnnotationEdit.Proofs.Syntax.Spread
import AnnotationEdit.Proofs.Syntax.Statements
import AnnotationEdit.Proofs.Syntax.Surviving
import AnnotationEdit.Proofs.Text.Applying
import AnnotationEdit.Proofs.Text.Cutting
import AnnotationEdit.Proofs.Text.Offsets
import AnnotationEdit.Proofs.Text.Places
import AnnotationEdit.Proofs.Text.Weaving
import AnnotationEdit.Proofs.Token.Appending
import AnnotationEdit.Proofs.Token.Gaps
import AnnotationEdit.Proofs.Token.Inserting
import AnnotationEdit.Proofs.Token.Lookup
import AnnotationEdit.Proofs.Token.Placement
import AnnotationEdit.Proofs.Token.Relexing
import AnnotationEdit.Proofs.Token.Scanning
import AnnotationEdit.Proofs.Token.Splicing
import AnnotationEdit.Proofs.Token.Weaving
import AnnotationEdit.Proofs.Writer.Adding
import AnnotationEdit.Proofs.Writer.Additions
import AnnotationEdit.Proofs.Writer.Appending
import AnnotationEdit.Proofs.Writer.Application
import AnnotationEdit.Proofs.Writer.Arranging
import AnnotationEdit.Proofs.Writer.Commuting
import AnnotationEdit.Proofs.Writer.Contribution
import AnnotationEdit.Proofs.Writer.Cutting
import AnnotationEdit.Proofs.Writer.Exchange
import AnnotationEdit.Proofs.Writer.Filling
import AnnotationEdit.Proofs.Writer.Hosting
import AnnotationEdit.Proofs.Writer.Insertions
import AnnotationEdit.Proofs.Writer.Joining
import AnnotationEdit.Proofs.Writer.Keeping
import AnnotationEdit.Proofs.Writer.Listing
import AnnotationEdit.Proofs.Writer.Lists
import AnnotationEdit.Proofs.Writer.Literals
import AnnotationEdit.Proofs.Writer.Members
import AnnotationEdit.Proofs.Writer.Moving
import AnnotationEdit.Proofs.Writer.Parentheses
import AnnotationEdit.Proofs.Writer.Refilling
import AnnotationEdit.Proofs.Writer.Renewals
import AnnotationEdit.Proofs.Writer.Replacements
import AnnotationEdit.Proofs.Writer.Slots
import AnnotationEdit.Proofs.Writer.Sparing
import AnnotationEdit.Proofs.Writer.Targets
import AnnotationEdit.Proofs.Writer.Totality
import AnnotationEdit.Service.Basic
import AnnotationEdit.Service.Compiler
import AnnotationEdit.Service.Reference
import AnnotationEdit.Service.Store
import AnnotationEdit.Syntax.Abstraction
import AnnotationEdit.Syntax.Basic
import AnnotationEdit.Syntax.Node
import AnnotationEdit.Syntax.Parser
import AnnotationEdit.Text.Blank
import AnnotationEdit.Text.Cut
import AnnotationEdit.Text.Diff
import AnnotationEdit.Text.Edit
import AnnotationEdit.Text.Letter
import AnnotationEdit.Text.Lines
import AnnotationEdit.Text.Position
import AnnotationEdit.Token.Basic
import AnnotationEdit.Token.Lexer
import AnnotationEdit.Token.Stream
import AnnotationEdit.Tree.Element
import AnnotationEdit.Tree.File
import AnnotationEdit.Tree.TargetIndex
import AnnotationEdit.Writer.Compound
import AnnotationEdit.Writer.Conversion
import AnnotationEdit.Writer.Draft
import AnnotationEdit.Writer.Insertion
import AnnotationEdit.Writer.Move
import AnnotationEdit.Writer.Queue
import AnnotationEdit.Writer.Removal
import AnnotationEdit.Writer.Replacement
import AnnotationEdit.Writer.Synthesis
