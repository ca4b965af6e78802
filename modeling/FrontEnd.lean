import FrontEnd.Command.Directory
import FrontEnd.Main
import FrontEnd.Proofs.Phrase.Placement
import FrontEnd.Proofs.Phrase.Planting
import FrontEnd.Proofs.Grammar.Tokens
import FrontEnd.Proofs.Grammar.Run
import FrontEnd.Proofs.Grammar.Expressions
import FrontEnd.Proofs.Grammar.Statements
import FrontEnd.Proofs.Grammar.Declarations
import FrontEnd.Proofs.Grammar.Modules
import FrontEnd.Proofs.Grammar.Recovery
import FrontEnd.Proofs.Grammar.Units
import FrontEnd.Proofs.Grammar.Printing
import FrontEnd.Proofs.Tree.Surroundings
import FrontEnd.Proofs.Tree.Links
import FrontEnd.Proofs.Grammar.Ownership
import FrontEnd.Proofs.Grammar.Trees
import FrontEnd.Proofs.Grammar.Scoping
import FrontEnd.Proofs.Tree.Descent
import FrontEnd.Proofs.Lowering.Translation
import FrontEnd.Proofs.Tree.WellFormed
import FrontEnd.Proofs.Lowering.Meaning
import FrontEnd.Proofs.Lowering.Steps
import FrontEnd.Proofs.Lowering.Registry
import FrontEnd.Proofs.Lowering.Prototypes
import FrontEnd.Proofs.Lowering.Expressions
import FrontEnd.Proofs.Lowering.Statements
import FrontEnd.Proofs.Lowering.Modules
import FrontEnd.Proofs.Lowering.Preservation
import FrontEnd.Proofs.Lowering.Acceptance
import FrontEnd.Proofs.Token.Spelling
import FrontEnd.Proofs.Token.Exactness
import FrontEnd.Proofs.Grammar.Reprinting
import FrontEnd.Proofs.Lowering.Numbering
import FrontEnd.Proofs.Lowering.Changes
import FrontEnd.Proofs.Lowering.Assignment
import FrontEnd.Proofs.Lowering.Linking
import FrontEnd.Proofs.Lowering.Growth
import FrontEnd.Proofs.Lowering.Safety
import FrontEnd.Proofs.Lowering.Stacks
import FrontEnd.Proofs.Token.Lines
import FrontEnd.Proofs.Token.Endings
import FrontEnd.Proofs.Text.Reading
import FrontEnd.Proofs.Lowering.Order
import FrontEnd.Proofs.Lowering.Inventory
import FrontEnd.Proofs.Lowering.Conditions
import FrontEnd.Proofs.Lowering.Places
import FrontEnd.Proofs.Lowering.Reordering
import FrontEnd.Proofs.Code.Listing
import FrontEnd.Proofs.Lowering.Listing
import FrontEnd.Proofs.Token.Writing
import FrontEnd.Proofs.Grammar.Braces
import FrontEnd.Proofs.Grammar.Bounds
import FrontEnd.Proofs.Grammar.Turns
import FrontEnd.Proofs.Grammar.Reports
import FrontEnd.Proofs.Tree.Rendering
import FrontEnd.Proofs.Tree.Shift
import FrontEnd.Proofs.Grammar.Rendering
import FrontEnd.Proofs.Grammar.Isolation
import FrontEnd.Proofs.Tree.Scopes
import FrontEnd.Proofs.Tree.Relocation
import FrontEnd.Proofs.Tree.Edits
import FrontEnd.Proofs.Tree.Splitting
import FrontEnd.Proofs.Grammar.Rearranging
import FrontEnd.Proofs.Tree.Layout
import FrontEnd.Proofs.Grammar.Locations
import FrontEnd.Proofs.Token.Casing
import FrontEnd.Proofs.Tree.Casing
import FrontEnd.Proofs.Lowering.Casing
import FrontEnd.Proofs.Lowering.Insensitivity
import FrontEnd.Proofs.Grammar.Forms
import FrontEnd.Proofs.Grammar.Precedence
import FrontEnd.Proofs.Grammar.Likeness
import FrontEnd.Proofs.Grammar.Limits
import FrontEnd.Proofs.Grammar.Nesting
import FrontEnd.Proofs.Grammar.Calls
import FrontEnd.Proofs.Grammar.Recursion
import FrontEnd.Proofs.Lowering.Types
import FrontEnd.Proofs.Lowering.Occurrences
import FrontEnd.Proofs.Lowering.Agreement
import FrontEnd.Proofs.Report.Excerpts
import FrontEnd.Proofs.Grammar.Mangling
